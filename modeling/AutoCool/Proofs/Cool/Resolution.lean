import AutoCool.Proofs.Cool.CheckComplete
import AutoCool.Proofs.Cool.CheckTypes
import AutoCool.Proofs.Cool.Frames

/-!
# Which variable a name means

The scopes that the checker makes for an expression and what is around it hold the frames that the
expression sees: each frame is the beginning of the variables of a scope, and the scope below it
sees just that many of them (`Enclosed`). The search for a name goes up these scopes, so it finds
the first variable of that name in the nearest frame that has one (`names_resolve`).
-/

namespace AutoCool.Cool

/-- The scope of what binds variables. -/
def Analysis.scopeOf (a : Analysis) : Owner → Option ScopeId
  | .cls i => (a.scopes.get ScopeTree.root).children[i]?
  | .feature i j =>
    ((a.scopes.get ScopeTree.root).children[i]?).bind fun s => (a.scopes.get s).children[j]?
  | .expr k => a.scopeAt k

/-- The variable of a number of what binds it. -/
def Analysis.variableAt (a : Analysis) (o : Owner) (m : Nat) : Option VarId :=
  ((a.scopeOf o).bind fun s => (a.scopes.get s).locals[m]?).map (·.2)

/-- A scope holds a frame, and maybe more variables after it. -/
structure Holds (a : Analysis) (s : Nat) (f : Frame) : Prop where
  place : a.scopeOf f.owner = some s
  vars : f.vars <+: a.scopes.typedLocals s

/-- The scopes above one hold some frames, and it sees no more of them. -/
inductive Enclosed (a : Analysis) : Nat → List Frame → Prop
  | top {s : Nat} : ScopeTree.root < s → (a.scopes.get s).parent = some ScopeTree.root →
      (a.scopes.get s).index = 0 → Enclosed a s []
  | frame {s p : Nat} {f : Frame} {outer : List Frame} : p < s → (a.scopes.get s).parent = some p →
      (a.scopes.get s).index = f.vars.length → Holds a p f → Enclosed a p outer →
        Enclosed a s (f :: outer)

variable {a a' : Analysis} {s scope i k m n v lo : Nat} {f : Frame} {o : Owner}
  {outer frames : List Frame} {name : String}
  {t : TypeId} {x : Expr}

/-! ## The search for a name -/

theorem lookup_of_first {l : List (String × VarId)} (h : l[m]? = some (name, v))
    (hfirst : ∀ m' < m, ∀ u, l[m']? ≠ some (name, u)) : l.lookup name = some v := by
  induction l generalizing m with
  | nil => cases h
  | cons x l ih =>
    obtain ⟨n, u⟩ := x
    cases m with
    | zero =>
      cases h
      exact List.lookup_cons_self
    | succ m =>
      have hne : name ≠ n := by
        rintro rfl
        exact hfirst 0 (Nat.succ_pos m) u rfl
      rw [List.lookup_cons, beq_eq_false_iff_ne.2 hne]
      exact ih h fun m' hm' u => hfirst (m' + 1) (Nat.succ_lt_succ hm') u

theorem Holds.vars_eq (h : Holds a s f) :
    f.vars = ((a.scopes.get s).locals.take f.vars.length).map fun x =>
      (x.1, (a.scopes.getVar x.2).type) := by
  rw [List.map_take]
  exact List.prefix_iff_eq_take.1 h.vars

theorem Holds.names_eq (h : Holds a s f) :
    ((a.scopes.get s).locals.take f.vars.length).map (·.1) = f.vars.map (·.1) := by
  conv_rhs => rw [h.vars_eq]
  rw [List.map_map]
  rfl

theorem Holds.exists_local (h : Holds a s f) (hm : f.vars[m]? = some (name, t)) :
    ∃ v, ((a.scopes.get s).locals.take f.vars.length)[m]? = some (name, v) ∧
      (a.scopes.getVar v).type = t ∧
      a.variableAt f.owner m = some v := by
  rw [h.vars_eq, List.getElem?_map, Option.map_eq_some_iff] at hm
  obtain ⟨⟨n, v⟩, hv, heq⟩ := hm
  cases heq
  refine ⟨v, hv, rfl, ?_⟩
  have hlocal : (a.scopes.get s).locals[m]? = some (n, v) := by
    rw [List.getElem?_take] at hv
    exact (Option.ite_none_right_eq_some.1 hv).2
  rw [Analysis.variableAt, h.place, Option.bind_some, hlocal]
  rfl

theorem Holds.lookup_of_first (h : Holds a s f) (hm : f.vars[m]? = some (name, t))
    (hfirst : ∀ m' < m, ∀ u, f.vars[m']? ≠ some (name, u)) :
    ∃ v, ((a.scopes.get s).locals.take f.vars.length).lookup name = some v ∧
      (a.scopes.getVar v).type = t ∧
      a.variableAt f.owner m = some v := by
  obtain ⟨v, hv, htype, hplace⟩ := h.exists_local hm
  refine ⟨v, Cool.lookup_of_first hv fun m' hm' u hu => ?_, htype, hplace⟩
  refine hfirst m' hm' (a.scopes.getVar u).type ?_
  rw [h.vars_eq, List.getElem?_map, hu]
  rfl

theorem Enclosed.find_earliest (h : Enclosed a s outer) (hf : Holds a s f)
    (hname : Earliest name (f :: outer) o m t) :
    ∃ v, a.scopes.findWithin s name (some f.vars.length) = some v ∧ (a.scopes.getVar v).type = t ∧
    a.variableAt o m = some v := by
  induction h generalizing f with
  | top =>
    cases hname with
    | here hm hfirst =>
      obtain ⟨v, hv, htype, hplace⟩ := hf.lookup_of_first hm hfirst
      refine ⟨v, ?_, htype, hplace⟩
      rw [ScopeTree.findWithin]
      simp only [Option.elim_some, hv]
    | outside _ hrest => cases hrest
  | @frame s p g outer hlt hparent hindex hg _ ih =>
    cases hname with
    | here hm hfirst =>
      obtain ⟨v, hv, htype, hplace⟩ := hf.lookup_of_first hm hfirst
      refine ⟨v, ?_, htype, hplace⟩
      rw [ScopeTree.findWithin]
      simp only [Option.elim_some, hv]
    | outside hnot hrest =>
      obtain ⟨v, hv, hplace⟩ := ih hg hrest
      refine ⟨v, ?_, hplace⟩
      have hnone := ScopeTree.lookup_eq_none_iff.2 (hf.names_eq ▸ hnot)
      rw [ScopeTree.findWithin]
      simp only [Option.elim_some, hnone, hparent, hindex, hlt, if_true, hv]

theorem Enclosed.find_none (h : Enclosed a s outer)
    (hroot : (a.scopes.get ScopeTree.root).parent = none) (hf : Holds a s f)
    (hname : ∀ g ∈ f :: outer, name ∉ g.vars.map (·.1)) :
    a.scopes.findWithin s name (some f.vars.length) = none := by
  induction h generalizing f with
  | @top s hlt hparent hindex =>
    have hnone := ScopeTree.lookup_eq_none_iff.2 (hf.names_eq ▸ hname f (.head _))
    rw [ScopeTree.findWithin]
    simp only [Option.elim_some, hnone, hparent, hindex, hlt, if_true]
    rw [ScopeTree.findWithin]
    simp only [Option.elim_some, List.take_zero, List.lookup_nil, hroot]
  | @frame s p g outer hlt hparent hindex hg _ ih =>
    have hnone := ScopeTree.lookup_eq_none_iff.2 (hf.names_eq ▸ hname f (.head _))
    rw [ScopeTree.findWithin]
    simp only [Option.elim_some, hnone, hparent, hindex, hlt, if_true]
    exact ih hg fun g' hg' => hname g' (.tail _ hg')

theorem find_of_typedLocals (hall : a.scopes.typedLocals s = f.vars) :
    a.scopes.find s name = a.scopes.findWithin s name (some f.vars.length) := by
  have hlength : f.vars.length = (a.scopes.get s).locals.length := by
    rw [← hall, ScopeTree.typedLocals, List.length_map]
  rw [ScopeTree.find, ScopeTree.findWithin, ScopeTree.findWithin]
  simp only [Option.elim_none, Option.elim_some, hlength, List.take_length]

/-! ## Walks keep what scopes hold -/

theorem getElem?_of_prefix {α : Type} {l l' : List α} {x : α} (h : l <+: l') (hx : l[k]? = some x) :
    l'[k]? = some x := by
  obtain ⟨l'', rfl⟩ := h
  rw [List.getElem?_append_left (List.getElem?_eq_some_iff.1 hx).1, hx]

theorem Later.scopeOf_eq (h : Later scope a a') (ho : a.scopeOf o = some s) :
    a'.scopeOf o = some s := by
  have hlt {i j s : Nat} (hj : (a.scopes.get i).children[j]? = some s) :
      i < a.scopes.scopes.size := by
    by_contra hge
    rw [ScopeTree.get_of_size_le (Nat.le_of_not_lt hge)] at hj
    cases hj
  have hchild {i j s : Nat} (hj : (a.scopes.get i).children[j]? = some s) :
      (a'.scopes.get i).children[j]? = some s :=
    getElem?_of_prefix (h.children i (hlt hj)) hj
  cases o with
  | cls i => exact hchild ho
  | feature i j =>
    obtain ⟨s', hs', hs⟩ := Option.bind_eq_some_iff.1 ho
    exact Option.bind_eq_some_iff.2 ⟨s', hchild hs', hchild hs⟩
  | expr k =>
    rw [Analysis.scopeOf, scopeAt_eq] at ho ⊢
    exact getElem?_of_prefix h.notes ho

theorem Later.typedLocals_prefix (h : Later scope a a') (hvalid : a.scopes.Valid)
    (hs : s < a.scopes.scopes.size) : a.scopes.typedLocals s <+: a'.scopes.typedLocals s := by
  obtain ⟨vs, hvs⟩ := h.grows.locals s hs
  refine ⟨vs.map fun x => (x.1, (a'.scopes.getVar x.2).type), ?_⟩
  rw [ScopeTree.typedLocals, ScopeTree.typedLocals, ← hvs, List.map_append]
  congr 1
  refine List.map_congr_left fun x hx => ?_
  rw [h.getVar_eq x.2 (hvalid s x hx)]

theorem Holds.later (h : Holds a s f) (hl : Later scope a a') (hvalid : a.scopes.Valid)
    (hs : s < a.scopes.scopes.size) : Holds a' s f :=
  ⟨hl.scopeOf_eq h.place, h.vars.trans (hl.typedLocals_prefix hvalid hs)⟩

theorem Enclosed.later (h : Enclosed a s outer) (hl : Later scope a a') (hvalid : a.scopes.Valid)
    (hs : s < a.scopes.scopes.size) : Enclosed a' s outer := by
  induction h with
  | @top s hlt hparent hindex =>
    exact .top hlt ((hl.grows.parent_eq s hs).trans hparent) ((hl.grows.index_eq s hs).trans hindex)
  | @frame s p f outer hlt hparent hindex hf _ ih =>
    have hp := Nat.lt_trans hlt hs
    exact .frame hlt ((hl.grows.parent_eq s hs).trans hparent)
      ((hl.grows.index_eq s hs).trans hindex) (hf.later hl hvalid hp) (ih hp)

/-- An expression was met in a scope from number `lo` on, and sees some frames there. If it binds no
variables itself, there are no others in its scope. If it is a name, it has the type of the variable
that it means. -/
inductive Seen (a : Analysis) (lo k : Nat) (x : Expr) : List Frame → Prop
  | intro {s : Nat} {f : Frame} {outer : List Frame} : lo ≤ s → s < a.scopes.scopes.size →
      a.scopeAt k = some s → Holds a s f →
      Enclosed a s outer → (x.ownNames = [] → a.scopes.typedLocals s = f.vars) →
      (∀ token, x = .atom .name token →
        a.typeAt k = some (some (variableType a.scopes s token.text))) → Seen a lo k x (f :: outer)

theorem Seen.mono (h : Seen a lo k x frames) (hlo : lo' ≤ lo) : Seen a lo' k x frames := by
  cases h with
  | intro hle hs hk hf houter hall htype =>
    exact .intro (Nat.le_trans hlo hle) hs hk hf houter hall htype

theorem Seen.later (h : Seen a lo k x frames) (hl : Later scope a a') (hr : Ready scope a)
    (hlo : scope < lo) (hnote : k < a.notes.size → a'.notes[k]? = a.notes[k]?) :
    Seen a' lo k x frames := by
  cases h with
  | @intro s f outer hle hs hk hf houter hall htype =>
    have hget := hl.get_eq s hs (Nat.lt_of_lt_of_le hlo hle)
    have hlt : k < a.notes.size := by
      obtain ⟨note, hnote, -⟩ := Option.map_eq_some_iff.1 hk
      exact (Array.getElem?_eq_some_iff.1 hnote).1
    refine .intro hle (Nat.lt_of_lt_of_le hs hl.grows.size_le) ?_ (hf.later hl hr.valid hs)
      (houter.later hl hr.valid hs)
      (fun hown => ?_) fun token hx => ?_
    · rw [Analysis.scopeAt, hnote hlt]
      exact hk
    · rw [← hall hown, ScopeTree.typedLocals, ScopeTree.typedLocals, hget]
      refine List.map_congr_left fun x hx => ?_
      rw [hl.getVar_eq x.2 (hr.valid s x hx)]
    · rw [Analysis.typeAt, hnote hlt, (hl.kept hr).variableType_eq hs hget]
      exact htype token hx

/-! ## Walks over expressions -/

/-- The parts that errands make scopes for, when the variables `seen` were defined before. -/
def Errand.rooms : (seen : List (String × TypeId)) → List Errand → List Room
  | _, [] => []
  | seen, .visit e :: es => { seen, expr := some e } :: rooms seen es
  | seen, .bare :: es => { seen, expr := none } :: rooms seen es
  | seen, .branch name t e :: es => { seen, own := [(name, t)], expr := some e } :: rooms seen es
  | seen, .declare name t :: es => rooms (seen ++ [(name, t)]) es
  | seen, .look _ :: es => rooms seen es

variable {ts : Types} {cls : TypeId} {site : Site}

theorem Errand.rooms_visits {xs : List Expr} : Errand.rooms [] (xs.map .visit) =
    (xs.map fun x => ({ expr := some x } : Part)).map fun part => { expr := part.expr } := by
  induction xs with
  | nil => rfl
  | cons x xs ih => rw [List.map_cons, Errand.rooms, ih, List.map_cons, List.map_cons]

theorem Errand.rooms_bindings {seen : List (String × TypeId)} :
    Errand.rooms seen (bs.flatMap (Binding.errands ts cls) ++ es) =
      Binding.rooms ts cls seen bs ++
        Errand.rooms (seen ++ bs.map (Binding.variable ts cls)) es := by
  induction bs generalizing seen with
  | nil => simp [Binding.rooms]
  | cons b bs ih =>
    obtain ⟨name, type, _ | e⟩ := b <;>
      simp [Binding.errands, Errand.rooms, Binding.rooms, Binding.variable, ih]

theorem Errand.rooms_branches {bs : List Branch} :
    Errand.rooms [] (bs.map (Branch.errand ts)) =
      bs.map fun b => { own := [b.variable ts], expr := some b.body } := by
  induction bs with
  | nil => rfl
  | cons b bs ih =>
    obtain ⟨name, type, body⟩ := b
    rw [List.map_cons, Branch.errand, Errand.rooms, ih, List.map_cons]
    rfl

theorem Expr.rooms_errands (e : Expr) : Errand.rooms [] (e.errands ts cls) = e.rooms ts cls := by
  cases e with
  | letIn bs x =>
    rw [Expr.errands, Errand.rooms_bindings, Expr.rooms, List.nil_append, Errand.rooms,
      Errand.rooms]
  | caseOf x bs => rw [Expr.errands, Errand.rooms, Errand.rooms_branches, Expr.rooms]
  | block xs | selfCall name xs => exact Errand.rooms_visits
  | call x name xs type => exact congrArg (List.cons _) Errand.rooms_visits
  | atom kind token => cases kind <;> rfl
  | _ => rfl

/-- A walk is in the scope of `o`, which holds some variables and no others. -/
structure Inside (a : Analysis) (scope : Nat) (o : Owner) (vars : List (String × TypeId))
    (outer : List Frame) : Prop where
  ready : Ready scope a
  place : a.scopeOf o = some scope
  vars_eq : a.scopes.typedLocals scope = vars
  outer : Enclosed a scope outer

variable {vars : List (String × TypeId)} {parts : List Part} {names : List String}

theorem Inside.holds (h : Inside a scope o vars outer) : Holds a scope ⟨o, vars⟩ :=
  ⟨h.place, h.vars_eq ▸ List.prefix_rfl⟩

theorem Inside.later (h : Inside a scope o vars outer) (hl : Later i a a') (hr : Ready scope a')
    (hvars : a'.scopes.typedLocals scope = a.scopes.typedLocals scope) :
    Inside a' scope o vars outer where
  ready := hr
  place := hl.scopeOf_eq h.place
  vars_eq := hvars.trans h.vars_eq
  outer := h.outer.later hl h.ready.valid h.ready.scope_lt

theorem Inside.laid (h : Inside a scope o vars outer) (hl : Laid scope i parts [] a a') :
    Inside a' scope o vars outer :=
  h.later hl.later hl.ready (hl.typedLocals_eq h.ready)

theorem Inside.defining (h : Inside a scope o vars outer) (name : String) (t : TypeId) :
    Inside (a.defining scope name t) scope o (vars ++ [(name, t)]) outer := by
  have hl : Laid scope 0 _ _ a (a.defining scope name t) := (Laid.refl h.ready).defining name t
  refine ⟨hl.ready, hl.later.scopeOf_eq h.place, ?_,
    h.outer.later hl.later h.ready.valid h.ready.scope_lt⟩
  rw [Analysis.scopes_defining, ScopeTree.typedLocals_define h.ready.valid h.ready.scope_lt,
    h.vars_eq]

theorem Inside.enclosed_child (h : Inside a scope o vars outer) :
    Enclosed (a.withChild scope) a.scopes.scopes.size (⟨o, vars⟩ :: outer) := by
  have hl : Laid scope 0 _ _ a (a.withChild scope) := .new_child h.ready
  have hin := h.laid hl
  have hget := h.ready.get_createChild
  refine .frame h.ready.scope_lt ?_ ?_ hin.holds hin.outer
  · rw [Analysis.scopes_withChild, hget]
  · rw [Analysis.scopes_withChild, hget, ← h.vars_eq, ScopeTree.typedLocals, List.length_map]

theorem typedLocals_child (hr : Ready scope a) :
    (a.withChild scope).scopes.typedLocals a.scopes.scopes.size = [] := by
  rw [Analysis.scopes_withChild, ScopeTree.typedLocals, hr.get_createChild]
  rfl

theorem later_entered (hc : a.cursor = a.notes.size) : Later scope a (a.entered scope) where
  grows := .refl
  children _ _ := List.prefix_rfl
  vars_le := Nat.le_refl _
  getVar_eq _ _ := rfl
  get_eq _ _ _ := rfl
  notes := by
    rw [noteScopes_entered hc]
    exact List.prefix_append _ _

theorem Inside.entered (hr : Ready scope a) (hvars : a.scopes.typedLocals scope = vars)
    (houter : Enclosed a scope outer) :
    Inside (a.entered scope) scope (.expr a.cursor) vars outer where
  ready := hr.entered
  place := by
    rw [Analysis.scopeOf, scopeAt_eq, noteScopes_entered hr.cursor_eq, hr.cursor_eq]
    simp [Analysis.noteScopes]
  vars_eq := hvars
  outer := houter.later (later_entered hr.cursor_eq) hr.valid hr.scope_lt

theorem Seen.rest (h : Seen a lo k x frames) (hlo : scope < lo) (hr : Ready scope a) (hk : k ≠ i)
    (hrest : VisitsAll site scope i es rs a a') : Seen a' (scope + 1) k x frames :=
  (h.mono hlo).later (hrest.laid hr).later hr (Nat.lt_succ_self scope) fun hlt =>
    (hrest.laid hr).notes_eq k hlt hk

/-- The parts of an expression and their variables depend on the names of types, and not on what
stands above them. -/
theorem Expr.rooms_congr (h : ts'.find = ts.find) (e : Expr) :
    e.rooms ts' cls = e.rooms ts cls := by
  have htype : typeNamed ts' = typeNamed ts := by
    funext name
    rw [typeNamed, typeNamed, h]
  have hbinding : Binding.variable ts' cls = Binding.variable ts cls := by
    funext b
    obtain ⟨name, type, value⟩ := b
    rw [Binding.variable, Binding.variable, htype]
  have hbranch : Branch.variable ts' = Branch.variable ts := by
    funext b
    obtain ⟨name, type, body⟩ := b
    simp only [Branch.variable, dispatchNamed, htype]
  have hrooms (bs : List Binding) (seen : List (String × TypeId)) :
      Binding.rooms ts' cls seen bs = Binding.rooms ts cls seen bs := by
    induction bs generalizing seen with
    | nil => rfl
    | cons b bs ih => rw [Binding.rooms, Binding.rooms, ih, hbinding]
  cases e with
  | letIn bs x => rw [Expr.rooms, Expr.rooms, hrooms, hbinding]
  | caseOf x bs => rw [Expr.rooms, Expr.rooms, hbranch]
  | _ => rfl

mutual

theorem Visits.seen {scope k : Nat} {e x : Expr} {r : Option TypeId} {a a' : Analysis}
    {vars : List (String × TypeId)} {outer frames : List Frame} (h : Visits site scope e r a a')
    (hr : Ready scope a) (hts : a.types.find = ts.find) (hvars : a.scopes.typedLocals scope = vars)
    (houter : Enclosed a scope outer) (hframed : Framed ts site.cls a.notes.size e
      ⟨.expr a.notes.size, vars⟩ outer k x frames) : Seen a' scope k x frames :=
  match h with
  | .intro herrands hrule => by
    have hmet := (Visits.intro herrands hrule).met hr
    have hin := Inside.entered hr hvars houter
    rw [hr.cursor_eq] at hin
    cases hframed with
    | here =>
      have hl := hmet.laid.later
      refine .intro (Nat.le_refl _) hmet.laid.ready.scope_lt ?_
        (hin.holds.later hl hr.valid hr.scope_lt)
        (hin.outer.later hl hr.valid hr.scope_lt) (fun hown => ?_) fun token hx => ?_
      · rw [Analysis.scopeAt, ← hr.cursor_eq, hmet.note]
        rfl
      · have hlaid := hmet.laid
        rw [hown] at hlaid
        exact (hlaid.typedLocals_eq hr.entered).trans hvars
      · subst hx
        rw [Analysis.typeAt, ← hr.cursor_eq, hmet.note, Option.bind_some]
        cases hrule (by simp)
        rfl
    | inside hrooms =>
      rw [← e.rooms_congr hts, ← e.rooms_errands] at hrooms
      have hsize : (a.entered scope).notes.size = a.notes.size + 1 := by
        rw [notes_entered hr.cursor_eq, Array.size_push]
      have hne : k ≠ a.cursor := by
        obtain ⟨m, hk, -⟩ := hrooms.node
        rw [hk, hr.cursor_eq]
        omega
      have hseen := herrands.seen hts hne (by rwa [List.append_nil]) (by rw [hsize]; exact hrooms)
      have hready := (herrands.laid hr.entered).ready
      have hsettled : Laid scope a.cursor [] [] _ _ := (Laid.refl hready).settled r
      exact (hseen.later hsettled.later hready (Nat.lt_succ_self _) fun hlt =>
        hsettled.notes_eq k hlt hne).mono (Nat.le_succ _)

theorem VisitsAll.seen {scope i k : Nat} {es : List Errand} {x : Expr} {a a' : Analysis} {o : Owner}
    {vars seen : List (String × TypeId)} {outer frames : List Frame}
    (h : VisitsAll site scope i es rs a a') (hts : a.types.find = ts.find) (hk : k ≠ i)
    (hin : Inside a scope o (vars ++ seen) outer)
    (hframed : FramedIn ts site.cls a.notes.size ⟨o, vars⟩ outer (Errand.rooms seen es) k x
      frames) : Seen a' (scope + 1) k x frames :=
  match h with
  | .nil => nomatch hframed
  | .remark (.said hsaid) hrest => by
    have hl : Laid scope i _ [] a _ := .of_reports hin.ready hsaid.reports
    exact hrest.seen (hl.types_eq ▸ hts) hk (hin.laid hl) (by rw [hl.size_notes]; exact hframed)
  | .remark (@Remark.settled _ _ t) hrest => by
    have hl : Laid scope i _ [] a _ := (Laid.refl hin.ready).settled t
    exact hrest.seen (hl.types_eq ▸ hts) hk (hin.laid hl) (by rw [hl.size_notes]; exact hframed)
  | .bare hrest => by
    have hl : Laid scope i _ [] a _ := .new_child hin.ready
    cases hframed with
    | later hframed => exact hrest.seen (hl.types_eq ▸ hts) hk (hin.laid hl) hframed
  | .visit he hrest => by
    have hl : Laid scope i _ [] a _ := (he.met hin.ready.createChild).new_child hin.ready
    cases hframed with
    | first hframed =>
      exact (he.seen hin.ready.createChild hts (typedLocals_child hin.ready) hin.enclosed_child
        hframed).rest hin.ready.scope_lt
        hl.ready hk hrest
    | later hframed =>
      refine hrest.seen (hl.types_eq ▸ hts) hk (hin.laid hl) ?_
      rw [hl.size_notes]
      simpa [Room.nodes] using hframed
  | @VisitsAll.branch _ _ _ name t _ _ _ _ _ _ _ ht he hrest => by
    have hr := hin.ready.createChild.defining name t
    have hl : Laid scope i _ [] a _ := (he.met hr).branch ht hin.ready
    cases hframed with
    | first hframed =>
      have hdefine : Laid a.scopes.scopes.size i _ _ (a.withChild scope) _ :=
        (Laid.refl hin.ready.createChild).defining name t
      have houter := hin.enclosed_child.later hdefine.later hin.ready.createChild.valid
          hin.ready.createChild.scope_lt
      refine (he.seen hr hts ?_ houter hframed).rest hin.ready.scope_lt hl.ready hk hrest
      rw [Analysis.scopes_defining, ScopeTree.typedLocals_define hin.ready.createChild.valid
        hin.ready.createChild.scope_lt,
        typedLocals_child hin.ready, List.nil_append]
    | later hframed =>
      refine hrest.seen (hl.types_eq ▸ hts) hk (hin.laid hl) ?_
      rw [hl.size_notes]
      simpa [Room.nodes] using hframed
  | @VisitsAll.declare _ _ _ name t _ _ _ _ hrest => by
    have hin' := hin.defining name t
    rw [List.append_assoc] at hin'
    exact hrest.seen hts hk hin' hframed
  | .known _ hrest => hrest.seen hts hk hin hframed
  | @VisitsAll.missed _ _ _ name method _ _ _ _ _ _ hrest => by
    have hl : Laid scope i _ [] a _ :=
      .of_reports hin.ready (.reported ⟨position name, .noVariable name.text method⟩)
    exact hrest.seen (hl.types_eq ▸ hts) hk (hin.laid hl) (by rw [hl.size_notes]; exact hframed)

end

/-! ## Features and classes -/

variable {f : Feature} {fs : List Feature} {e : Expr} {c : ClassDecl} {cs : List ClassDecl}
  {method method' : Option String} {j start : Nat}

theorem Errand.rooms_declare {seen : List (String × TypeId)} :
    Errand.rooms seen ((vars.map fun x => .declare x.1 x.2) ++ es) =
      Errand.rooms (seen ++ vars) es := by
  induction vars generalizing seen with
  | nil => rw [List.map_nil, List.nil_append, List.append_nil]
  | cons x vars ih =>
    rw [List.map_cons, List.cons_append, Errand.rooms, ih, List.append_assoc, List.singleton_append]

theorem VisitsFeature.seen (h : VisitsFeature site scope f method a a')
    (hts : a.types.find = ts.find) (hmethod : ∀ m, f.method? ts = some m →
      a.types.findMethod site.cls m.name = .ok (site.cls, m)) (hin : Inside a scope o [] outer)
    (he : f.expr = some e) (hframed : Framed ts site.cls a.notes.size e ⟨.expr a.notes.size, []⟩
      (⟨o, f.variables ts site.cls⟩ :: outer) k x frames) : Seen a' (scope + 1) k x frames := by
  have hin0 : Inside a scope o ([] ++ []) outer := hin
  cases h with
  | bare => cases he
  | value hvalue =>
    cases he
    have hrooms : FramedIn ts site.cls a.notes.size ⟨o, []⟩ outer (Errand.rooms [] [.visit e]) k x
        frames := .first hframed
    exact (hvalue (k + 1)).seen hts (Nat.ne_of_lt (Nat.lt_succ_self k)) hin0 hrooms
  | @method name type params _ _ m _ _ _ hfind hbody =>
    cases he
    cases hfind.symm.trans (hmethod _ rfl)
    refine (hbody (k + 1)).seen hts (Nat.ne_of_lt (Nat.lt_succ_self k)) hin0 ?_
    rw [List.cons_append, Errand.rooms, Errand.rooms_declare, Method.ofSignature, List.zip_map']
    exact .first hframed

theorem Inside.feature (h : Inside a scope (.cls i) vars outer)
    (hn : (a.scopes.get scope).children.length = n) :
    Inside (a.withChild scope) a.scopes.scopes.size (.feature i n) []
      (⟨.cls i, vars⟩ :: outer) where
  ready := h.ready.createChild
  place := by
    have hl : Laid scope 0 _ _ a (a.withChild scope) := .new_child h.ready
    refine Option.bind_eq_some_iff.2 ⟨scope, hl.later.scopeOf_eq h.place, ?_⟩
    rw [Analysis.scopes_withChild, ScopeTree.get_createChild h.ready.scope_lt,
      if_neg (Nat.ne_of_lt h.ready.scope_lt), if_pos rfl,
      ← hn]
    exact List.getElem?_concat_length
  vars_eq := typedLocals_child h.ready
  outer := h.enclosed_child

theorem VisitsFeatures.seen (h : VisitsFeatures scope site fs method a a')
    (hcls : site.cls ≠ TypeId.auto)
    (hts : a.types.find = ts.find)
    (hmethods : ∀ f ∈ fs, ∀ m, f.method? ts = some m → a.types.findMethod site.cls m.name =
      .ok (site.cls, m))
    (hin : Inside a scope (.cls i) vars outer) (hn : (a.scopes.get scope).children.length = n)
      (hf : fs[j]? = some f)
    (he : f.expr = some e) (hstart : start = a.notes.size +
      ((fs.take j).flatMap Feature.nodes).length)
    (hframed : Framed ts site.cls start e ⟨.expr start, []⟩
      (⟨.feature i (n + j), f.variables ts site.cls⟩ :: ⟨.cls i, vars⟩ :: outer) k x frames) :
    Seen a' (scope + 1) k x frames := by
  induction h generalizing n j with
  | nil => cases hf
  | @cons site f' fs m m' a a1 a' hfirst hrest ih =>
    obtain ⟨hmethod, hmethods⟩ := List.forall_mem_cons.1 hmethods
    have hfeature : LaidFeatures site.cls scope 0 [f'] a a1 := hfirst.laid_child hcls hin.ready
    cases j with
    | zero =>
      cases hf
      subst hstart
      have hl : LaidFeatures site.cls scope (k + 1) fs a1 a' := hrest.laid hcls hfeature.ready
      have hseen := hfirst.seen hts hmethod (hin.feature hn) he hframed
      refine (hseen.mono (Nat.succ_le_succ (Nat.le_of_lt hin.ready.scope_lt))).later hl.later
        hfeature.ready (Nat.lt_succ_self _) ?_
      exact fun hlt => hl.notes_eq k hlt (Nat.ne_of_lt (Nat.lt_succ_self k))
    | succ j =>
      obtain ⟨is, hget, hlaid, -⟩ := hfeature.laid
      have htyped := hfeature.scopes.typedLocals_eq hin.ready.valid (i := scope) (by rw [hget])
      rw [← hfeature.types_eq] at hts
      refine ih hcls hts (by rwa [hfeature.types_eq])
        (hin.later hfeature.later hfeature.ready htyped) (n := n + 1) ?_ hf ?_ ?_
      · rw [hget, List.length_append, hn, hlaid.length_eq, List.length_singleton]
      · rw [hstart, hfeature.size_notes, List.take_succ_cons, List.flatMap_cons,
          List.flatMap_singleton, List.length_append,
          Nat.add_assoc]
      · rw [Nat.add_assoc, Nat.add_comm 1]
        exact hframed

theorem Inside.definingAll (h : Inside a scope o vars outer) (vars' : List (String × TypeId)) :
    Inside (a.definingAll scope vars') scope o (vars ++ vars') outer := by
  induction vars' generalizing a vars with
  | nil =>
    rw [List.append_nil]
    exact h
  | cons x vars' ih =>
    have hrest := ih (h.defining x.1 x.2)
    rwa [List.append_assoc, List.singleton_append] at hrest

theorem inside_class (hr : Ready ScopeTree.root a)
    (hroot : (a.scopes.get ScopeTree.root).locals = [])
    (hn : (a.scopes.get ScopeTree.root).children.length = n) :
    Inside (a.withChild ScopeTree.root) a.scopes.scopes.size (.cls n) [] [] where
  ready := hr.createChild
  place := by
    rw [Analysis.scopeOf, Analysis.scopes_withChild, ScopeTree.get_createChild hr.scope_lt,
      if_neg (Nat.ne_of_lt hr.scope_lt),
      if_pos rfl, ← hn]
    exact List.getElem?_concat_length
  vars_eq := typedLocals_child hr
  outer := by
    have hget := hr.get_createChild
    refine .top hr.scope_lt ?_ ?_
    · rw [Analysis.scopes_withChild, hget]
    · rw [Analysis.scopes_withChild, hget, hroot, List.length_nil]

theorem DeclaredClass.findMethod_reparented {ts' : Types} (h : DeclaredClass ts cls c)
    (hts : Checking.Reparented ts ts') (hf : f ∈ c.features) {m : Method}
    (hm : f.method? ts = some m) : ts'.findMethod cls m.name = .ok (cls, m) := by
  refine findMethod_of_find? ?_
  rw [hts.methods_eq]
  exact find?_of_nodup h.distinct.2 (h.mem_methods hf hm)

theorem VisitsClass.seen (h : VisitsClass method a.scopes.scopes.size c method'
      (a.withChild ScopeTree.root) a')
    (hauto : cls ≠ TypeId.auto) (hr : Ready ScopeTree.root a)
      (hroot : (a.scopes.get ScopeTree.root).locals = [])
    (hn : (a.scopes.get ScopeTree.root).children.length = n) (hts : Checking.Reparented ts a.types)
    (hcls : ts.find c.name.text = .ok cls) (hclass : DeclaredClass ts cls c)
      (hf : c.features[j]? = some f) (he : f.expr = some e)
    (hstart : start = a.notes.size + ((c.features.take j).flatMap Feature.nodes).length)
    (hframed : Framed ts cls start e ⟨.expr start, []⟩ [⟨.feature n j, f.variables ts cls⟩,
      ⟨.cls n, attributeVars ts cls⟩]
      k x frames) : Seen a' 1 k x frames := by
  obtain @⟨cls', _, _, a1, _, hcls', hbreaks, hfeatures⟩ := h
  cases ((hts.find_eq _).symm.trans hcls').symm.trans hcls
  obtain ⟨⟨ts1, ds, hts1, ha1⟩, -⟩ := hbreaks.eq
  have htypes1 : a1.types = ts1 := by rw [ha1]
  have hts' : Checking.Reparented ts a1.types := htypes1 ▸ hts.trans hts1
  have hin1 : Inside a1 a.scopes.scopes.size (.cls n) [] [] := by
    have hin := inside_class hr hroot hn
    obtain ⟨hlt, hparent, hindex⟩ := hin.outer
    rw [ha1]
    exact { hin with ready := { hin.ready with }, outer := .top hlt hparent hindex }
  have hempty : (a1.scopes.get a.scopes.scopes.size).children = [] := by
    rw [ha1, Analysis.scopes_withChild, hr.get_createChild]
  have hattributes : (a1.types.get cls).attributes.map (fun x => (x.name, x.type)) =
      attributeVars ts cls := by
    rw [hts'.attributes_eq, attributeVars]
  rw [hattributes] at hfeatures
  have hdefined : Laid a.scopes.scopes.size 0 [] _ a1 _ :=
    (Laid.refl hin1.ready).definingAll (attributeVars ts cls)
  have hchildren : ((a1.definingAll a.scopes.scopes.size (attributeVars ts cls)).scopes.get
      a.scopes.scopes.size).children.length = 0 := by
    obtain ⟨is, vs, hget, ⟨hfits, -⟩, -⟩ := hdefined.laid
    cases hfits
    rw [hget, hempty]
    rfl
  have hfind : (a1.definingAll a.scopes.scopes.size (attributeVars ts cls)).types.find = ts.find :=
    (congrArg Types.find hdefined.types_eq).trans (funext hts'.find_eq)
  have hmethods : ∀ f ∈ c.features, ∀ m, f.method? ts = some m →
      (a1.definingAll a.scopes.scopes.size (attributeVars ts cls)).types.findMethod cls m.name = .ok
        (cls, m) := by
    rw [hdefined.types_eq]
    exact fun f hf m hm => hclass.findMethod_reparented hts' hf hm
  have hstart' : start = (a1.definingAll a.scopes.scopes.size (attributeVars ts cls)).notes.size +
      ((c.features.take j).flatMap Feature.nodes).length := by
    rw [hdefined.size_notes, hstart, ha1]
    rfl
  rw [← Nat.zero_add j] at hframed
  exact (hfeatures.seen hauto hfind hmethods (hin1.definingAll _) hchildren hf he hstart'
    hframed).mono
    (Nat.succ_le_succ (Nat.zero_le _))

theorem VisitsClasses.seen (h : VisitsClasses method cs a a') (hr : Ready ScopeTree.root a)
    (hroot : (a.scopes.get ScopeTree.root).locals = [])
      (hn : (a.scopes.get ScopeTree.root).children.length = n)
    (hts : Checking.Reparented ts a.types)
    (hcs : ∀ c ∈ cs, ∀ cls, ts.find c.name.text = .ok cls → cls ≠ TypeId.auto ∧
      DeclaredClass ts cls c)
    (hc : cs[i]? = some c) (hcls : ts.find c.name.text = .ok cls) (hf : c.features[j]? = some f)
      (he : f.expr = some e)
    (hstart : start = a.notes.size + (((cs.take i).flatMap ClassDecl.nodes).length +
      ((c.features.take j).flatMap Feature.nodes).length))
    (hframed : Framed ts cls start e ⟨.expr start, []⟩
      [⟨.feature (n + i) j, f.variables ts cls⟩, ⟨.cls (n + i), attributeVars ts cls⟩] k x frames) :
        Seen a' 1 k x frames := by
  induction h generalizing n i with
  | nil => cases hc
  | @cons method m c' cs a a1 a' hfirst hrest ih =>
    obtain ⟨hclass, hclasses⟩ := List.forall_mem_cons.1 hcs
    have hauto : a.types.find c'.name.text ≠ .ok TypeId.auto := by
      rw [hts.find_eq]
      exact fun hfind => (hclass _ hfind).1 rfl
    have hlaid := hfirst.laid hauto hr
    have hts1 := hts.trans hlaid.types
    obtain ⟨is, hget, hfits, -⟩ := hlaid.laid
    cases i with
    | zero =>
      cases hc
      obtain ⟨hne, hdeclared⟩ := hclass _ hcls
      have hseen := hfirst.seen hne hr hroot hn hts hcls hdeclared hf he
          (by simpa using hstart) hframed
      have hl := hrest.laid (fun c hc => ?_) hlaid.ready
      · exact hseen.later hl.later hlaid.ready Nat.one_pos (hl.notes_eq k)
      · rw [hts1.find_eq]
        exact fun hfind => (hclasses c hc _ hfind).1 rfl
    | succ i =>
      refine ih hlaid.ready (by rw [hget, hroot]) (n := n + 1) ?_ hts1 hclasses hc ?_ ?_
      · rw [hget, List.length_append, hn, hfits.length_eq, List.length_singleton]
      · rw [hstart, hlaid.size_notes, List.take_succ_cons, List.flatMap_cons,
          List.flatMap_singleton, List.length_append,
          ClassDecl.nodes]
        omega
      · rw [Nat.add_assoc, Nat.add_comm 1]
        exact hframed

theorem Declared.seen (hd : Declared p ts) (hcheck : (check p).outcome { types := ts } = (none, a))
    (h : p.Framed ts i j k x frames) : Seen a 1 k x frames := by
  obtain @⟨c, f, e, cls, start, hc, hcls, hf, he, hstart, hframed⟩ := h
  rw [← Nat.zero_add i] at hframed
  refine (visitsClasses_of_check hcheck).seen ready_start ?_ ?_ .refl ?_ hc hcls hf he ?_ hframed
  · rw [ScopeTree.get_start]
  · rw [ScopeTree.get_start, List.length_nil]
  · intro c' hc' cls' hcls'
    obtain ⟨i', hi'⟩ := List.mem_iff_getElem?.1 hc'
    cases (hd.find_class hi').symm.trans hcls'
    exact ⟨fun h => hd.find_ne_auto c' hc' (h ▸ hcls'), hd.classes i' c' hi'⟩
  · exact hstart.trans (Nat.zero_add _).symm

theorem mem_of_variableAt (h : a.variableAt o m = some v) :
    ∃ s, a.scopeOf o = some s ∧ ((a.scopes.get s).locals.map (·.2))[m]? = some v := by
  obtain ⟨x, hx, rfl⟩ := Option.map_eq_some_iff.1 h
  obtain ⟨s, hs, hx⟩ := Option.bind_eq_some_iff.1 hx
  exact ⟨s, hs, by rw [List.getElem?_map, hx]; rfl⟩

theorem variableAt_inj (ht : a.scopes.Tidy) (h : a.variableAt o m = some v)
    (h' : a.variableAt o' m' = some v) : a.scopeOf o = a.scopeOf o' ∧ m = m' := by
  obtain ⟨s, hs, hm⟩ := mem_of_variableAt h
  obtain ⟨s', hs', hm'⟩ := mem_of_variableAt h'
  cases ht.owner s s' v (List.mem_of_getElem? hm) (List.mem_of_getElem? hm')
  exact ⟨hs.trans hs'.symm,
    List.getElem?_inj (List.getElem?_eq_some_iff.1 hm).1 (ht.nodup s) |>.1 (hm.trans hm'.symm)⟩

/-- A name means the first variable of the nearest frame that has one, and nothing where no frame
has one. -/
structure Resolves (a : Analysis) (s : Nat) (name : String) (frames : List Frame) : Prop where
  found : ∀ o m t, Earliest name frames o m t →
    ∃ v, a.scopes.find s name = some v ∧ (a.scopes.getVar v).type = t ∧ a.variableAt o m = some v
  missing : (∀ f ∈ frames, name ∉ f.vars.map (·.1)) → a.scopes.find s name = none

theorem Seen.resolves (h : Seen a lo k x frames) (ht : a.scopes.Tidy) (hx : x.lookup? = some name) :
    ∃ s, a.scopeAt k = some s ∧ Resolves a s name frames ∧
      ∀ token, x = .atom .name token → a.typeAt k = some (some (variableType a.scopes s name)) := by
  obtain @⟨s, f, outer, -, -, hk, hholds, houter, hall, htype⟩ := h
  have hfind : a.scopes.find s name = a.scopes.findWithin s name (some f.vars.length) :=
    find_of_typedLocals (hall (x.ownNames_of_lookup? hx))
  refine ⟨s, hk, ⟨fun o m t hname => ?_, fun hname => ?_⟩, ?_⟩
  · rw [hfind]
    exact houter.find_earliest hholds hname
  · rw [hfind]
    exact houter.find_none ht.root_eq hholds hname
  · rintro token rfl
    cases hx
    exact htype token rfl

theorem variableType_of_find (h : a.scopes.find s name = some v) :
    variableType a.scopes s name = (a.scopes.getVar v).type := by
  rw [variableType, h]

/-- Every expression of a program that is built and checked sees some frames. A name in it means the
first variable of that name in the nearest frame that has one, and has its type. This is the last
one, and so the innermost one, unless the frame has several: a `let` may bind a name twice, and the
variables of a `let` that is a branch of a `case` are in one frame with the variable of the
branch. -/
theorem names_resolve {p : Program} {ts₀ : Types}
    (hcollect : (collect p.classes).outcome Builtin.types = (none, ts₀))
    (hbuild : (build p).outcome ts₀ = (none, ts))
      (hcheck : (check p).outcome { types := ts } = (none, a)) :
    (∀ k x, p.nodes[k]? = some x → ∃ i j frames, p.Framed ts i j k x frames) ∧
      (∀ i j k x frames name, p.Framed ts i j k x frames → x.lookup? = some name →
        ∃ s, a.scopeAt k = some s ∧ Resolves a s name frames ∧
          ∀ o m t, Innermost name frames o m t →
            (∀ f ∈ frames, f.owner = o → (f.vars.map (·.1)).count name ≤ 1) →
            (∃ v, a.scopes.find s name = some v ∧ (a.scopes.getVar v).type = t ∧
              a.variableAt o m = some v) ∧
              ∀ token, x = .atom .name token → a.typeAt k = some (some t)) ∧
      ∀ o o' m m' v, a.variableAt o m = some v → a.variableAt o' m' = some v →
        a.scopeOf o = a.scopeOf o' ∧ m = m' := by
  have hd := declared_of_build hcollect hbuild
  have ht := (laidClasses_of_check hd.find_ne_auto hcheck).ready.tidy
  refine ⟨fun k x hx => hd.exists_framed hx, fun i j k x frames name hframed hx => ?_,
    fun o o' m m' v => variableAt_inj ht⟩
  obtain ⟨s, hs, hresolves, htype⟩ := (hd.seen hcheck hframed).resolves ht hx
  refine ⟨s, hs, hresolves, fun o m t hname hone => ?_⟩
  obtain ⟨v, hv, rfl, hplace⟩ := hresolves.found o m t (hname.earliest hone)
  refine ⟨⟨v, hv, rfl, hplace⟩, fun token hx => ?_⟩
  rw [htype token hx, variableType_of_find hv]

/-- A `let` that hides a parameter, whose value still means the parameter. -/
def Sample.hiding : Program where
  classes := [
    { name := word "Main"
      parent := none
      features := [
        .method (word "main") [⟨word "x", word "Int"⟩] (word "Object")
          (.letIn [.mk (word "x") (word "Bool") (some (.atom .name (word "x")))]
            (.atom .name (word "x")))] }]

theorem names_resolve_hiding :
    (∃ s v, Sample.hiding.checked.scopeAt 1 = some s ∧ Sample.hiding.checked.scopes.find s "x" =
      some v ∧
      Sample.hiding.checked.variableAt (.feature 0 0) 1 = some v ∧
        Sample.hiding.checked.typeAt 1 = some (some 5)) ∧
    ∃ s v, Sample.hiding.checked.scopeAt 2 = some s ∧ Sample.hiding.checked.scopes.find s "x" =
      some v ∧
      Sample.hiding.checked.variableAt (.expr 0) 0 = some v ∧ Sample.hiding.checked.typeAt 2 = some
        (some 7) := by
  obtain ⟨hcollect, hbuild, hcheck⟩ := Sample.hiding.checks (by decide +kernel)
  have hcls : Sample.hiding.types.find "Main" = .ok 8 := by decide +kernel
  have hint : Sample.hiding.types.named "Int" = 5 := by decide +kernel
  have hbool : ownType 8 (typeNamed Sample.hiding.types "Bool") = 7 := by decide +kernel
  obtain ⟨-, hresolve, -⟩ := names_resolve hcollect hbuild hcheck
  constructor
  · obtain ⟨s, hs, -, h⟩ :=
      hresolve 0 0 1 _ _ "x" (.intro rfl hcls rfl rfl rfl (.inside (.first .here))) rfl
    obtain ⟨⟨v, hv, -, hplace⟩, htype⟩ :=
      h (.feature 0 0) 1 _ (.outside (by decide) (.outside (by decide) (.of_last rfl rfl)))
        (by decide)
    exact ⟨s, v, hs, hv, hplace, (htype _ rfl).trans (congrArg (some ∘ some) hint)⟩
  · obtain ⟨s, hs, -, h⟩ :=
      hresolve 0 0 2 _ _ "x" (.intro rfl hcls rfl rfl rfl (.inside (.later (.first .here)))) rfl
    obtain ⟨⟨v, hv, -, hplace⟩, htype⟩ :=
      h (.expr 0) 0 _ (.outside (by decide) (.of_last rfl rfl)) (by decide)
    exact ⟨s, v, hs, hv, hplace, (htype _ rfl).trans (congrArg (some ∘ some) hbool)⟩

/-- A `let` that is the branch of a `case`, with a variable of the same name. -/
def Sample.shadowed : Program where
  classes := [
    { name := word "Main"
      parent := none
      features := [
        .method (word "main") [⟨word "b", word "Object"⟩] (word "Object")
          (.caseOf (.atom .name (word "b")) [
            .mk (word "y") (word "Int")
              (.letIn [.mk (word "y") (word "String") (some (.atom .string (word "a")))]
                (.atom .name (word "y")))])] }]

/-- The body of the `let` means the variable of the branch, of type `Int`. The innermost variable of
that name is the one of the `let`, of type `String`. -/
theorem names_resolve_shadowed :
    (check Sample.shadowed).outcome { types := Sample.shadowed.types } =
      (none, Sample.shadowed.checked) ∧
      (∃ frames, Sample.shadowed.Framed Sample.shadowed.types 0 0 4 (.atom .name (word "y"))
        frames ∧
        Innermost "y" frames (.expr 2) 1 6) ∧
      Sample.shadowed.checked.scopeAt 4 = some 7 ∧
      Sample.shadowed.checked.scopes.find 7 "y" = Sample.shadowed.checked.variableAt (.expr 2) 0 ∧
      Sample.shadowed.checked.scopes.find 7 "y" ≠ Sample.shadowed.checked.variableAt (.expr 2) 1 ∧
      Sample.shadowed.checked.typeAt 4 = some (some 5) := by
  have hcls : Sample.shadowed.types.find "Main" = .ok 8 := by decide +kernel
  have hstring : ownType 8 (typeNamed Sample.shadowed.types "String") = 6 := by decide +kernel
  have hframed : Sample.shadowed.Framed Sample.shadowed.types 0 0 4 (.atom .name (word "y")) _ :=
    .intro rfl hcls rfl rfl rfl (.inside (.later (.first (.inside (.later (.first .here))))))
  refine ⟨outcome_eq (by decide +kernel),
    ⟨_, hframed, ?_⟩, by decide +kernel, by decide +kernel, by decide +kernel,
    by decide +kernel⟩
  exact .outside (by decide) (.of_last (congrArg (fun t => some ("y", t)) hstring) rfl)

end AutoCool.Cool
